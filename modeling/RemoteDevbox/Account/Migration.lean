import RemoteDevbox.Account.Sequential
import RemoteDevbox.Lib.Lists

namespace RemoteDevbox.Account

/-!
# The move of the old vault

Labels used to live in `~/.claude-accounts`. The first command that runs for the
profile `claude-main` moves the registry, the backups and the directories of the
labels into that profile's own vault. It can end after any of its moves, and it
ends at a move that fails.
-/

/-! ## The script -/

/-- A directory of a vault: a parked login, the vault of a profile, or both. -/
structure Entry where
  identity : Option Identity
  credential : Option Credential
  /-- It holds a registry and the labels of a profile. -/
  vault : Bool
  /-- It holds anything else: a snapshot, a half of a pair. -/
  other : Bool

def Entry.isEmpty (e : Entry) : Bool :=
  e.identity.isNone && e.credential.isNone && !e.vault && !e.other

def Entry.pair (e : Entry) : Option (Identity × Credential) :=
  e.identity.bind fun identity ↦ e.credential.map (identity, ·)

/-- The old vault, and `claude-main` in it. -/
structure Legacy where
  /-- The labels of `accounts.json`. -/
  registry : Option (List String)
  dirs : List (String × Entry)
  /-- No two directories have one name. -/
  names : (dirs.map Prod.fst).Nodup
  /-- An empty `.lock`. -/
  locked : Bool
  mainRegistry : Option (List String)
  mainDirs : String → Option Entry
  /-- `claude-main/.backups` has a `.backups` of its own, with something in it. -/
  inner : Bool

def Legacy.without (v : Legacy) (name : String) : Legacy :=
  { v with
    dirs := v.dirs.filter (·.1 != name)
    names := v.names.sublist (List.filter_sublist.map _) }

/-- One command of the script that changes the vault. -/
inductive Move where
  | makeMain
  | closeMain
  | registry
  | backups
  | lock
  | dir (name : String)

/-- `rename` puts a directory in the place of an empty one only. -/
def Legacy.blocked (v : Legacy) (name : String) : Bool := (v.mainDirs name).any (!·.isEmpty)

/-- A `mv` that fails ends the script. One onto a directory that is there moves
into it, so a registry can end up beside the one that is read. -/
def Legacy.apply (v : Legacy) : Move → Option Legacy
  | .makeMain => some v
  | .closeMain => some v
  | .registry =>
      let mainRegistry := if (v.mainDirs "accounts.json").isSome then none else v.registry
      some { v with registry := none, mainRegistry }
  | .backups =>
      match v.dirs.lookup ".backups", v.mainDirs ".backups" with
      | none, _ => some v
      | some e, none =>
          let mainDirs := Function.update v.mainDirs ".backups" (some e)
          some { v.without ".backups" with mainDirs }
      | some e, some _ =>
          if v.inner then none else some { v.without ".backups" with inner := !e.isEmpty }
  | .lock => some { v with locked := false }
  | .dir name =>
      if v.blocked name then none
      else
        let mainDirs := Function.update v.mainDirs name (v.dirs.lookup name)
        some { v.without name with mainDirs }

/-- `set -e` -/
def Legacy.run (v : Legacy) : List Move → Legacy
  | [] => v
  | move :: moves =>
      match v.apply move with
      | none => v
      | some w => w.run moves

def startsWith (start name : String) : Bool := start.toList.isPrefixOf name.toList

/-- `case "$base" in claude-* | codex-* | omp-*) continue` -/
def filtered (name : String) : Bool :=
  startsWith "claude-" name || startsWith "codex-" name || startsWith "omp-" name

/-- `"$src"/*` leaves out the names with a leading dot. -/
def visible (name : String) : Bool := !startsWith "." name

def moves (d : String × Entry) : Bool :=
  visible d.1 && !filtered d.1 && (d.2.identity.isSome || d.2.credential.isSome)

/-- The directories in the order of the loop. -/
def Legacy.moved (v : Legacy) : List String := (v.dirs.filter moves).map Prod.fst

/-- Either registry decides at once: without one to move there is nothing to do,
and a vault that has one already is left alone. -/
def Legacy.due (v : Legacy) : Bool := v.registry.isSome && v.mainRegistry.isNone

/-- `migrate_legacy_vault` for the profile `claude-main`. -/
def migrateLegacyVault (v : Legacy) : List Move :=
  if v.due then
    [.makeMain, .closeMain, .registry, .backups, .lock] ++ v.moved.map .dir
  else []

/-- A run that ends after its first `n` moves. -/
def Legacy.cut (v : Legacy) (n : ℕ) : Legacy := v.run ((migrateLegacyVault v).take n)

/-- A run that nothing interrupts. Where a move of it fails, the registry is moved,
and the next run has nothing to do. -/
def Legacy.finish (v : Legacy) : Legacy := v.run (migrateLegacyVault v)

/-- Any number of runs that were cut short, and one that was not. -/
def Legacy.rerun (v : Legacy) (cuts : List ℕ) : Legacy := (cuts.foldl Legacy.cut v).finish

/-! ## What a rerun moves -/

/-- How many moves the run that moves the registry is given. -/
def Legacy.given (v : Legacy) : List ℕ → ℕ
  | [] => v.moved.length + 5
  | n :: cuts => if n ≤ 2 then v.given cuts else n

/-- The backups cannot be moved. -/
def Legacy.jammed (v : Legacy) : Bool :=
  (v.dirs.lookup ".backups").isSome && (v.mainDirs ".backups").isSome && v.inner

/-- The first directory that `claude-main` has already ends the loop. -/
def Legacy.loop (v : Legacy) (n : ℕ) : ℕ :=
  if v.jammed then 0 else min (n - 5) (v.moved.findIdx v.blocked)

def Legacy.swept (v : Legacy) (n : ℕ) : Bool := decide (4 ≤ n) && !v.jammed

/-- How many directories the run that moves the registry gets to. -/
def Legacy.reach (v : Legacy) (cuts : List ℕ) : ℕ := v.loop (v.given cuts)

/-- The run that moves the registry moves the backups. -/
def Legacy.backedUp (v : Legacy) (cuts : List ℕ) : Bool := v.swept (v.given cuts)

/-- The registry is moved, these directories, and perhaps the backups. -/
structure MovedOver (v : Legacy) (backups : Bool) (names : List String) (v' : Legacy) : Prop where
  registry : v'.registry = none
  dirs : v'.dirs = v.dirs.filter fun d ↦ !(names.contains d.1 || backups && d.1 == ".backups")
  mainDirs : ∀ name, v'.mainDirs name =
    if name ∈ names ∨ backups = true ∧ name = ".backups" ∧ v.mainDirs name = none then
      v.dirs.lookup name
    else v.mainDirs name

section

variable {v : Legacy}

theorem run_of_some {w : Legacy} {move : Move} (h : v.apply move = some w) (moves : List Move) :
    v.run (move :: moves) = w.run moves := by
  simp only [Legacy.run, h]

theorem run_of_none {move : Move} (h : v.apply move = none) (moves : List Move) :
    v.run (move :: moves) = v := by
  simp only [Legacy.run, h]

theorem cut_of_done (h : v.due = false) (n : ℕ) : v.cut n = v := by
  simp [Legacy.cut, migrateLegacyVault, h, Legacy.run]

theorem finish_of_done (h : v.due = false) : v.finish = v := by
  simp [Legacy.finish, migrateLegacyVault, h, Legacy.run]

theorem rerun_of_done (h : v.due = false) (cuts : List ℕ) : v.rerun cuts = v := by
  have hcuts : cuts.foldl Legacy.cut v = v := by
    induction cuts with
    | nil => rfl
    | cons n cuts ih => rw [List.foldl_cons, cut_of_done h, ih]
  rw [Legacy.rerun, hcuts, finish_of_done h]

theorem visible_of_mem {name : String} (h : name ∈ v.moved) : visible name = true := by
  obtain ⟨d, hd, rfl⟩ := List.mem_map.mp h
  have hmoves := (List.mem_filter.mp hd).2
  simp only [moves, Bool.and_eq_true] at hmoves
  exact hmoves.1.1

theorem ne_backups {name : String} (h : visible name = true) : name ≠ ".backups" := by
  rintro rfl
  exact absurd h (by decide)

/-- `claude-main` has under a fresh name what it had before the run. -/
theorem MovedOver.mainDirs_of_notMem {w : Legacy} {backups : Bool} {names : List String}
    {name : String} (hw : MovedOver v backups names w) (h : name ∉ names)
    (hvisible : visible name = true) : w.mainDirs name = v.mainDirs name := by
  rw [hw.mainDirs, if_neg (by simp [h, ne_backups hvisible])]

theorem MovedOver.lookup_of_notMem {w : Legacy} {backups : Bool} {names : List String}
    {name : String} (hw : MovedOver v backups names w) (h : name ∉ names)
    (hvisible : visible name = true) : w.dirs.lookup name = v.dirs.lookup name := by
  rw [hw.dirs]
  exact lookup_filter (q := fun name ↦ !(names.contains name || backups && name == ".backups"))
    v.dirs (by simp [h, ne_backups hvisible])

/-- One turn of the loop. -/
theorem movedOver_dir {w : Legacy} {backups : Bool} {names : List String} {name : String}
    (hw : MovedOver v backups names w) (h : name ∉ names) (hvisible : visible name = true) :
    MovedOver v backups (names ++ [name])
      { w.without name with mainDirs := Function.update w.mainDirs name (w.dirs.lookup name) } where
  registry := hw.registry
  dirs := by
    change w.dirs.filter (·.1 != name) = _
    rw [hw.dirs, List.filter_filter]
    congr 1
    funext d
    simp only [List.contains_append, List.contains_cons, List.contains_nil, Bool.or_false,
      Bool.not_or, bne]
    ac_rfl
  mainDirs other := by
    change Function.update w.mainDirs name (w.dirs.lookup name) other = _
    by_cases heq : other = name
    · subst heq
      rw [Function.update_self, if_pos (by simp), hw.lookup_of_notMem h hvisible]
    · rw [Function.update_of_ne heq, hw.mainDirs]
      simp [heq]

/-- The loop moves the directories it is given up to the first that is blocked. -/
theorem movedOver_dirs {backups : Bool} (names done : List String) (hnodup : (done ++ names).Nodup)
    (hvisible : ∀ name ∈ names, visible name = true) (n : ℕ) {w : Legacy}
    (hw : MovedOver v backups done w) :
    MovedOver v backups (done ++ names.take (min n (names.findIdx v.blocked)))
      (w.run ((names.take n).map .dir)) := by
  induction names generalizing done n w with
  | nil => simpa [Legacy.run] using hw
  | cons name names ih =>
      have hfresh : name ∉ done := fun hmem ↦
        (List.nodup_append.mp hnodup).2.2 name hmem name List.mem_cons_self rfl
      have hname := hvisible name List.mem_cons_self
      have hblocked : w.blocked name = v.blocked name := by
        rw [Legacy.blocked, hw.mainDirs_of_notMem hfresh hname, Legacy.blocked]
      cases n with
      | zero => simpa [Legacy.run] using hw
      | succ n =>
          rw [List.take_succ_cons, List.map_cons, List.findIdx_cons]
          cases hstop : v.blocked name with
          | true =>
              rw [run_of_none (by simp [Legacy.apply, hblocked, hstop])]
              simpa using hw
          | false =>
              have hsplit : done ++ name :: names = (done ++ [name]) ++ names := by simp
              rw [hsplit] at hnodup
              rw [run_of_some (by simp only [Legacy.apply, hblocked, hstop]; rfl)]
              have hrest := ih (done ++ [name]) hnodup
                (fun other hother ↦ hvisible other (List.mem_cons_of_mem _ hother)) n
                (movedOver_dir hw hfresh hname)
              simpa [Nat.succ_min_succ] using hrest

theorem moved_nodup : v.moved.Nodup := v.names.sublist (List.filter_sublist.map _)

/-- The registry goes first. -/
theorem movedOver_nil {w : Legacy} (hregistry : w.registry = none) (hdirs : w.dirs = v.dirs)
    (hmainDirs : w.mainDirs = v.mainDirs) : MovedOver v false [] w := by
  refine ⟨hregistry, ?_, fun name ↦ ?_⟩
  · simp [hdirs]
  · simp [hmainDirs]

/-- The move of the backups fails, or it is one more that `MovedOver` tells of. -/
theorem apply_backups {w : Legacy} (hw : MovedOver v false [] w) (hinner : w.inner = v.inner) :
    (v.jammed = true ∧ w.apply .backups = none) ∨
      (v.jammed = false ∧ ∃ w', w.apply .backups = some w' ∧ MovedOver v true [] w') := by
  have hdirs : w.dirs = v.dirs := by simpa using hw.dirs
  have hmain : w.mainDirs = v.mainDirs := by
    funext name
    simpa using hw.mainDirs name
  have hfilter : v.dirs.filter (fun d ↦ !([].contains d.1 || true && d.1 == ".backups")) =
      v.dirs.filter (·.1 != ".backups") := rfl
  cases hold : v.dirs.lookup ".backups" with
  | none =>
      refine .inr ⟨by simp [Legacy.jammed, hold], w, by simp [Legacy.apply, hdirs, hold],
        hw.registry, ?_, fun name ↦ ?_⟩
      · rw [hfilter, hdirs, eq_comm, List.filter_eq_self]
        intro d hd
        have hname := lookup_eq_none.mp hold
        simpa using fun heq ↦ hname (List.mem_map.mpr ⟨d, hd, heq⟩)
      · rw [hmain]
        split
        · rename_i h
          obtain h | ⟨-, rfl, hnone⟩ := h
          · cases h
          · rw [hnone, hold]
        · rfl
  | some e =>
      cases hthere : v.mainDirs ".backups" with
      | none =>
          refine .inr ⟨by simp [Legacy.jammed, hthere],
            { w.without ".backups" with
              mainDirs := Function.update v.mainDirs ".backups" (some e) },
            by simp only [Legacy.apply, hdirs, hold, hmain, hthere], hw.registry, ?_,
            fun name ↦ ?_⟩
          · rw [hfilter, ← hdirs]
            rfl
          · change Function.update v.mainDirs ".backups" (some e) name = _
            by_cases hname : name = ".backups"
            · subst hname
              simp [hthere, hold]
            · simp [hname]
      | some e' =>
          cases hin : v.inner with
          | true =>
              exact .inl ⟨by simp [Legacy.jammed, hold, hthere, hin],
                by simp [Legacy.apply, hdirs, hold, hmain, hthere, hinner, hin]⟩
          | false =>
              refine .inr ⟨by simp [Legacy.jammed, hin],
                { w.without ".backups" with inner := !e.isEmpty },
                by simp [Legacy.apply, hdirs, hold, hmain, hthere, hinner, hin],
                hw.registry, ?_, fun name ↦ ?_⟩
              · rw [hfilter, ← hdirs]
                rfl
              · change w.mainDirs name = _
                rw [hmain, if_neg]
                rintro (h | ⟨-, rfl, hnone⟩)
                · cases h
                · rw [hthere] at hnone
                  cases hnone

theorem cut_early {n : ℕ} (h : n ≤ 2) : v.cut n = v := by
  unfold Legacy.cut migrateLegacyVault
  split
  · interval_cases n <;> rfl
  · simp [Legacy.run]

/-- What a run that moves the registry moves, by the number of its moves. -/
theorem cut_late (hdue : v.due = true) {n : ℕ} (h : 3 ≤ n) :
    MovedOver v (v.swept n) (v.moved.take (v.loop n)) (v.cut n) := by
  obtain ⟨m, rfl⟩ : ∃ m, n = m + 3 := ⟨n - 3, by omega⟩
  have hfirst : v.cut (m + 3) = Legacy.run
      { v with
        registry := none
        mainRegistry := if (v.mainDirs "accounts.json").isSome then none else v.registry }
      (([Move.backups, .lock] ++ v.moved.map Move.dir).take m) := by
    unfold Legacy.cut migrateLegacyVault
    rw [if_pos hdue]
    rfl
  rw [hfirst]
  have hnil := movedOver_nil (v := v) (w :=
    { v with
      registry := none
      mainRegistry := if (v.mainDirs "accounts.json").isSome then none else v.registry })
    rfl rfl rfl
  cases m with
  | zero => simpa [Legacy.swept, Legacy.loop, Legacy.run] using hnil
  | succ m =>
      rw [List.cons_append, List.take_succ_cons]
      obtain ⟨hjam, hnone⟩ | ⟨hjam, w, hsome, hw⟩ := apply_backups hnil rfl
      · rw [run_of_none hnone]
        simpa [Legacy.swept, Legacy.loop, hjam] using hnil
      · rw [run_of_some hsome]
        have hswept : v.swept (m + 1 + 3) = true := by
          simp [Legacy.swept, hjam]
        have hloop : v.loop (m + 1 + 3) = min (m - 1) (v.moved.findIdx v.blocked) := by
          rw [Legacy.loop, if_neg (by simp [hjam])]
          congr 1
        rw [hswept, hloop]
        cases m with
        | zero => simpa [Legacy.run] using hw
        | succ m =>
            rw [List.cons_append, List.take_succ_cons, run_of_some rfl, List.nil_append,
              ← List.map_take]
            have hunlocked : MovedOver v true [] { w with locked := false } :=
              ⟨hw.registry, hw.dirs, hw.mainDirs⟩
            exact movedOver_dirs v.moved [] moved_nodup (fun _ ↦ visible_of_mem) m hunlocked

theorem finish_eq_cut : v.finish = v.cut (migrateLegacyVault v).length := by
  rw [Legacy.cut, List.take_length, Legacy.finish]

theorem MovedOver.done {backups : Bool} {names : List String} {w : Legacy}
    (h : MovedOver v backups names w) : w.due = false := by
  simp [Legacy.due, h.registry]

/-- The run that moves the registry is the last one that moves anything. -/
theorem rerun_movedOver (hdue : v.due = true) (cuts : List ℕ) :
    MovedOver v (v.backedUp cuts) (v.moved.take (v.reach cuts)) (v.rerun cuts) := by
  induction cuts with
  | nil =>
      have hlength : (migrateLegacyVault v).length = v.moved.length + 5 := by
        simp [migrateLegacyVault, hdue]
      have hlate := cut_late (n := v.moved.length + 5) hdue (by omega)
      rw [← hlength, ← finish_eq_cut, hlength] at hlate
      exact hlate
  | cons n cuts ih =>
      rcases Nat.lt_or_ge 2 n with hlate | hearly
      · have hgiven : v.given (n :: cuts) = n := if_neg (by omega)
        have hmoved := cut_late hdue (show 3 ≤ n from hlate)
        rw [Legacy.backedUp, Legacy.reach, hgiven]
        change MovedOver v _ _ ((v.cut n).rerun cuts)
        rw [rerun_of_done hmoved.done]
        exact hmoved
      · have hgiven : v.given (n :: cuts) = v.given cuts := if_pos hearly
        rw [Legacy.backedUp, Legacy.reach, hgiven]
        change MovedOver v _ _ ((v.cut n).rerun cuts)
        rw [cut_early hearly]
        exact ih

end

/-! ## No label is lost -/

/-- The pair a vault holds under a label. -/
def Legacy.parked (v : Legacy) (label : String) : Option (Identity × Credential) :=
  (v.dirs.lookup label).bind Entry.pair

def Legacy.mainParked (v : Legacy) (label : String) : Option (Identity × Credential) :=
  (v.mainDirs label).bind Entry.pair

/-- Every label of a registry that was moved has its own files, and the vaults
of the profiles are where they were. -/
structure Migrated (v v' : Legacy) : Prop where
  labels : v'.registry = none → ∀ label ∈ v.registry.getD [],
    (v.parked label).isSome ∧ v'.mainParked label = v.parked label
  vaults : ∀ d ∈ v.dirs, d.2.vault = true → d ∈ v'.dirs

/-- The loop sees the label and gets to it, or the label has the name of the backups
and these are moved. -/
def Legacy.Takes (v : Legacy) (cuts : List ℕ) (label : String) : Prop :=
  (visible label = true ∧ filtered label = false ∧ v.moved.idxOf label < v.reach cuts) ∨
    (label = ".backups" ∧ v.mainDirs ".backups" = none ∧ v.backedUp cuts = true)

/-- Every label has its pair, which is taken or is in `claude-main` already, and no
vault of a profile is gotten to. -/
structure Reaches (v : Legacy) (cuts : List ℕ) : Prop where
  labels : ∀ label ∈ v.registry.getD [], (v.parked label).isSome ∧
    (v.Takes cuts label ∨ v.mainParked label = v.parked label)
  vaults : ∀ d ∈ v.dirs, d.2.vault = true →
    (d.1 = ".backups" → v.backedUp cuts = false) ∧
      (moves d = true → v.reach cuts ≤ v.moved.idxOf d.1)

section

variable {v : Legacy} {cuts : List ℕ}

theorem moved_of_mem {d : String × Entry} (h : d ∈ v.dirs) (hmoves : moves d = true) :
    d.1 ∈ v.moved :=
  List.mem_map.mpr ⟨d, List.mem_filter.mpr ⟨h, hmoves⟩, rfl⟩

theorem moves_of_mem {d : String × Entry} (h : d ∈ v.dirs) (hmem : d.1 ∈ v.moved) :
    moves d = true := by
  obtain ⟨d', hd', hname⟩ := List.mem_map.mp hmem
  obtain ⟨hmem', hmoves⟩ := List.mem_filter.mp hd'
  obtain rfl : d' = d := List.inj_on_of_nodup_map v.names hmem' h hname
  exact hmoves

theorem exists_entry {label : String} (h : (v.parked label).isSome) :
    ∃ e, v.dirs.lookup label = some e ∧ e.identity.isSome := by
  obtain ⟨p, hp⟩ := Option.isSome_iff_exists.mp h
  obtain ⟨e, hlookup, hpair⟩ := Option.bind_eq_some_iff.mp hp
  obtain ⟨identity, hidentity, -⟩ := Option.bind_eq_some_iff.mp hpair
  exact ⟨e, hlookup, by simp [hidentity]⟩

/-- The labels that are taken are those that `MovedOver` looks up. -/
theorem takes_iff {label : String} (h : (v.parked label).isSome) :
    v.Takes cuts label ↔ label ∈ v.moved.take (v.reach cuts) ∨
      v.backedUp cuts = true ∧ label = ".backups" ∧ v.mainDirs label = none := by
  obtain ⟨e, hlookup, hidentity⟩ := exists_entry h
  have hentry : (label, e) ∈ v.dirs := mem_of_lookup hlookup
  constructor
  · rintro (⟨hvisible, hfree, hreached⟩ | ⟨rfl, hnone, hbacked⟩)
    · have hmem : label ∈ v.moved :=
        moved_of_mem hentry (by simp [moves, hvisible, hfree, hidentity])
      exact .inl ((List.mem_take_iff_idxOf_lt hmem).mpr hreached)
    · exact .inr ⟨hbacked, rfl, hnone⟩
  · rintro (htaken | ⟨hbacked, rfl, hnone⟩)
    · have hmem := List.mem_of_mem_take htaken
      have hmoves := moves_of_mem hentry hmem
      simp only [moves, Bool.and_eq_true, Bool.not_eq_true'] at hmoves
      exact .inl ⟨hmoves.1.1, hmoves.1.2, (List.mem_take_iff_idxOf_lt hmem).mp htaken⟩
    · exact .inr ⟨rfl, hnone, hbacked⟩

theorem mainParked_iff {backups : Bool} {names : List String} {w : Legacy} {label : String}
    (hw : MovedOver v backups names w) :
    w.mainParked label = v.parked label ↔
      (label ∈ names ∨ backups = true ∧ label = ".backups" ∧ v.mainDirs label = none) ∨
        v.mainParked label = v.parked label := by
  rw [Legacy.mainParked, hw.mainDirs]
  split
  · rename_i htaken
    exact iff_of_true rfl (.inl htaken)
  · rename_i hleft
    exact (or_iff_right hleft).symm

theorem vault_stays_iff {backups : Bool} {n : ℕ} {w : Legacy} {d : String × Entry}
    (hw : MovedOver v backups (v.moved.take n) w) (hd : d ∈ v.dirs) :
    d ∈ w.dirs ↔
      (d.1 = ".backups" → backups = false) ∧ (moves d = true → n ≤ v.moved.idxOf d.1) := by
  have htaken : d.1 ∈ v.moved.take n ↔ moves d = true ∧ v.moved.idxOf d.1 < n := by
    constructor
    · intro hmem
      have hmem' := List.mem_of_mem_take hmem
      exact ⟨moves_of_mem hd hmem', (List.mem_take_iff_idxOf_lt hmem').mp hmem⟩
    · rintro ⟨hmoves, hlt⟩
      exact (List.mem_take_iff_idxOf_lt (moved_of_mem hd hmoves)).mpr hlt
  have hkept : d ∈ w.dirs ↔
      d.1 ∉ v.moved.take n ∧ (d.1 = ".backups" → backups = false) := by
    rw [hw.dirs, List.mem_filter]
    cases backups <;> simp [hd]
  rw [hkept, htaken, and_comm]
  simp only [not_and, not_lt]

end

/-- A rerun after any interruptions has moved every registered label, and no
vault of a profile, exactly when the run that moves the registry took what it had to. -/
theorem migrated_iff (v : Legacy) (cuts : List ℕ) :
    Migrated v (v.rerun cuts) ↔ (v.due = true → Reaches v cuts) := by
  cases hdue : v.due with
  | true =>
      have hmoved := rerun_movedOver hdue cuts
      have hlabel (label : String) :
          ((v.parked label).isSome ∧ (v.rerun cuts).mainParked label = v.parked label) ↔
            (v.parked label).isSome ∧
              (v.Takes cuts label ∨ v.mainParked label = v.parked label) :=
        and_congr_right fun hparked ↦ by rw [mainParked_iff hmoved, takes_iff hparked]
      constructor
      · intro h _
        exact ⟨fun label hmem ↦ (hlabel label).mp (h.labels hmoved.registry label hmem),
          fun d hd hvault ↦ (vault_stays_iff hmoved hd).mp (h.vaults d hd hvault)⟩
      · intro h
        obtain ⟨hlabels, hvaults⟩ := h rfl
        exact ⟨fun _ label hmem ↦ (hlabel label).mpr (hlabels label hmem),
          fun d hd hvault ↦ (vault_stays_iff hmoved hd).mpr (hvaults d hd hvault)⟩
  | false =>
      rw [rerun_of_done hdue]
      refine iff_of_true ⟨fun hnone label hlabel ↦ ?_, fun d hd _ ↦ hd⟩ (by simp)
      rw [hnone] at hlabel
      cases hlabel

/-! ## What is lost -/

/-- An old vault as commands that ran to their end leave it, and no `claude-main` yet. -/
structure Produced (v : Legacy) : Prop where
  labels : ∀ label ∈ v.registry.getD [], plainLabel label = true ∧ (v.parked label).isSome
  main : v.mainRegistry = none ∧ ∀ name, v.mainDirs name = none

def parkedLogin (name : String) : Entry where
  identity := some (identityOf name)
  credential := some (credentialOf name)
  vault := false
  other := false

/-- An old vault with two labels. -/
def oldVault : Legacy where
  registry := some ["work", "home"]
  dirs := [("home", parkedLogin "bob"), ("work", parkedLogin "ada")]
  names := by decide
  locked := false
  mainRegistry := none
  mainDirs _ := none
  inner := false

theorem oldVault_produced : Produced oldVault where
  labels := by
    intro label hlabel
    have hcases : label = "work" ∨ label = "home" := by simpa [oldVault] using hlabel
    rcases hcases with rfl | rfl
    · exact ⟨by decide, rfl⟩
    · exact ⟨by decide, rfl⟩
  main := ⟨rfl, fun _ ↦ rfl⟩

/-- Cut off right after the move of the registry, the script never moves a label. -/
theorem cutAfterRegistry_loses :
    ∃ v cuts, Produced v ∧ ¬ Migrated v (v.rerun cuts) := by
  refine ⟨oldVault, [3], oldVault_produced, fun h ↦ ?_⟩
  have hmain := (h.labels rfl "work" (by decide)).2
  cases hmain

end RemoteDevbox.Account
