import RemoteDevbox.Client.ApplyLocks
import RemoteDevbox.Lib.Runs
import Mathlib.Logic.Function.Basic

namespace RemoteDevbox.Client.ApplyLocks

open Js.Text Ansible.Inventory

/-!
# Applies side by side

An apply runs its command under nested lock commands, one for each of its lock
files. The kernel's lock is exclusive and is not waited for: where it is
taken, the lock command ends and with it the whole chain.
-/

/-! ## The chain of lock commands -/

structure Command where
  command : String
  args : List String

/-- One round of the loop. -/
def wrap (darwin : Bool) (lockFile : String) (inside : Command) : Command :=
  if darwin then
    ⟨"/usr/bin/lockf", "-k" :: "-t" :: "0" :: lockFile :: inside.command :: inside.args⟩
  else
    ⟨"/usr/bin/flock", "-n" :: "-E" :: "75" :: lockFile :: inside.command :: inside.args⟩

/-- The command that `runWithApplyLocks` spawns. -/
def runWithApplyLocks (darwin : Bool) (lockFiles : List String) (locked : Command) : Command :=
  lockFiles.reverse.foldl (fun inside lockFile ↦ wrap darwin lockFile inside) locked

/-- What a lock command takes, and what it runs then. -/
def lockStep (c : Command) : Option (String × Command) :=
  if c.command = "/usr/bin/flock" then
    match c.args with
    | "-n" :: "-E" :: "75" :: lockFile :: command :: args => some (lockFile, ⟨command, args⟩)
    | _ => none
  else if c.command = "/usr/bin/lockf" then
    match c.args with
    | "-k" :: "-t" :: "0" :: lockFile :: command :: args => some (lockFile, ⟨command, args⟩)
    | _ => none
  else none

/-- The command that applies the playbook. -/
def applyCommand (args : List String) : Command := ⟨"/bin/sh", "-c" :: args⟩

theorem lockStep_wrap (darwin : Bool) (lockFile : String) (inside : Command) :
    lockStep (wrap darwin lockFile inside) = some (lockFile, inside) := by
  cases darwin <;> rfl

theorem runWithApplyLocks_cons (darwin : Bool) (lockFile : String) (lockFiles : List String)
    (locked : Command) : runWithApplyLocks darwin (lockFile :: lockFiles) locked =
      wrap darwin lockFile (runWithApplyLocks darwin lockFiles locked) := by
  rw [runWithApplyLocks, List.reverse_cons, List.foldl_append]
  rfl

/-! ## Applies -/

structure Apply where
  inventory : List Char
  workspaceRoot : List Char
  args : List String

inductive Phase where
  /-- The chain still takes locks. -/
  | locking
  | running
  /-- It has ended, its locks are about to go. -/
  | ended

structure Process where
  apply : Apply
  held : List String
  rest : Command
  phase : Phase

abbrev State (ι : Type) := ι → Option Process

/-- Steps of the process with this name. -/
inductive Event (ι : Type) where
  | launch (i : ι) (apply : Apply)
  | lock (i : ι)
  | start (i : ι)
  | finish (i : ι)
  | release (i : ι) (lockFile : String)
  | vanish (i : ι)

section Applies

variable {ι : Type} [DecidableEq ι]

/-- No process holds the lock. -/
def Free (s : State ι) (lockFile : String) : Prop := ∀ i p, s i = some p → lockFile ∉ p.held

/-- A lock that is free is taken; at one that is not the chain ends. A process
may end at any time, and its locks go one by one. -/
def Next (env : Env) (darwin : Bool) (s : State ι) : Event ι → State ι → Prop
  | .launch i apply, s' => s i = none ∧
      ∃ lockFiles, applyLockFiles env apply.inventory apply.workspaceRoot = some lockFiles ∧
        s' = Function.update s i (some ⟨apply, [],
          runWithApplyLocks darwin lockFiles (applyCommand apply.args), .locking⟩)
  | .lock i, s' => ∃ p lockFile inside, s i = some p ∧ p.phase = .locking ∧
      lockStep p.rest = some (lockFile, inside) ∧
        ((Free s lockFile ∧
            s' = Function.update s i (some { p with held := lockFile :: p.held, rest := inside })) ∨
          (¬Free s lockFile ∧ s' = Function.update s i (some { p with phase := .ended })))
  | .start i, s' => ∃ p, s i = some p ∧ p.phase = .locking ∧ lockStep p.rest = none ∧
      s' = Function.update s i (some { p with phase := .running })
  | .finish i, s' => ∃ p, s i = some p ∧ s' = Function.update s i (some { p with phase := .ended })
  | .release i lockFile, s' => ∃ p, s i = some p ∧ p.phase = .ended ∧
      s' = Function.update s i (some { p with held := p.held.filter (· ≠ lockFile) })
  | .vanish i, s' => ∃ p, s i = some p ∧ p.phase = .ended ∧ p.held = [] ∧
      s' = Function.update s i none

def applies (env : Env) (darwin : Bool) : System (State ι) (Event ι) where
  start s := ∀ i, s i = none
  next s e s' := Next env darwin s e s'

/-- Ansible finds the host in the inventory of the apply. -/
def Touches (patterns : Patterns) (apply : Apply) (a : List Char) : Prop :=
  ∃ all, addresses patterns apply.inventory = some all ∧ a ∈ all

/-- Every apply that is launched has an inventory that both read alike. -/
def LaunchesPlain (_ : State ι) : Event ι → Prop
  | .launch _ apply => PlainInventory apply.inventory
  | _ => True

/-- At most one apply that touches a host runs. -/
def Exclusive (patterns : Patterns) (s : State ι) : Prop :=
  ∀ i j p q a, s i = some p → s j = some q → p.phase = .running → q.phase = .running →
    Touches patterns p.apply a → Touches patterns q.apply a → i = j

/-- An apply that runs holds all its locks. -/
def Complete (env : Env) (s : State ι) : Prop :=
  ∀ i p, s i = some p → p.phase = .running → ∀ lockFiles,
    applyLockFiles env p.apply.inventory p.apply.workspaceRoot = some lockFiles →
      ∀ f ∈ lockFiles, f ∈ p.held

/-! ## The invariant -/

/-- How far the chain of a process has come. -/
inductive Progress (env : Env) (darwin : Bool) (p : Process) : Prop where
  | locking (taken left : List String) (hphase : p.phase = .locking)
      (hfiles : applyLockFiles env p.apply.inventory p.apply.workspaceRoot = some (taken ++ left))
      (hheld : ∀ f ∈ taken, f ∈ p.held)
      (hrest : p.rest = runWithApplyLocks darwin left (applyCommand p.apply.args))
  | running (files : List String) (hphase : p.phase = .running)
      (hfiles : applyLockFiles env p.apply.inventory p.apply.workspaceRoot = some files)
      (hheld : ∀ f ∈ files, f ∈ p.held)
  | ended (hphase : p.phase = .ended)

structure Inv (env : Env) (darwin : Bool) (s : State ι) : Prop where
  plain : ∀ i p, s i = some p → PlainInventory p.apply.inventory
  progress : ∀ i p, s i = some p → Progress env darwin p
  exclusive : ∀ i j p q f, s i = some p → s j = some q → f ∈ p.held → f ∈ q.held → i = j

variable {env : Env} {darwin : Bool} {s s' : State ι}

omit [DecidableEq ι] in
theorem inv_start (h : ∀ i, s i = none) : Inv env darwin s := by
  refine ⟨fun i p hp ↦ ?_, fun i p hp ↦ ?_, fun i j p q f hp ↦ ?_⟩
  all_goals
    rw [h i] at hp
    cases hp

/-- One process moves on, with no lock but its own and free ones. -/
theorem Inv.update (h : Inv env darwin s) {i : ι} {p : Process}
    (hplain : PlainInventory p.apply.inventory) (hprogress : Progress env darwin p)
    (hheld : ∀ f ∈ p.held, ∀ j q, s j = some q → f ∈ q.held → j = i) :
    Inv env darwin (Function.update s i (some p)) := by
  have hcases : ∀ j q, Function.update s i (some p) j = some q →
      (j = i ∧ q = p) ∨ (j ≠ i ∧ s j = some q) := by
    intro j q hq
    by_cases hj : j = i
    · subst hj
      rw [Function.update_self] at hq
      exact .inl ⟨rfl, (Option.some.inj hq).symm⟩
    · rw [Function.update_of_ne hj] at hq
      exact .inr ⟨hj, hq⟩
  refine ⟨fun j q hq ↦ ?_, fun j q hq ↦ ?_, fun j k q r f hq hr hfq hfr ↦ ?_⟩
  · obtain ⟨rfl, rfl⟩ | ⟨_, hq⟩ := hcases j q hq
    · exact hplain
    · exact h.plain j q hq
  · obtain ⟨rfl, rfl⟩ | ⟨_, hq⟩ := hcases j q hq
    · exact hprogress
    · exact h.progress j q hq
  · rcases hcases j q hq with ⟨rfl, rfl⟩ | ⟨_, hj⟩
    · rcases hcases k r hr with ⟨rfl, rfl⟩ | ⟨_, hk⟩
      · rfl
      · exact (hheld f hfq k r hk hfr).symm
    · rcases hcases k r hr with ⟨rfl, rfl⟩ | ⟨_, hk⟩
      · exact hheld f hfr j q hj hfq
      · exact h.exclusive j k q r f hj hk hfq hfr

theorem inv_next (h : Inv env darwin s) {e : Event ι} (hmeets : LaunchesPlain s e)
    (hnext : Next env darwin s e s') : Inv env darwin s' := by
  have hown : ∀ {i : ι} {p : Process}, s i = some p → ∀ f ∈ p.held, ∀ j q, s j = some q →
      f ∈ q.held → j = i := fun hp f hf j q hq hfq ↦ h.exclusive j _ q _ f hq hp hfq hf
  cases e with
  | launch i apply =>
      obtain ⟨_, lockFiles, hfiles, rfl⟩ := hnext
      exact h.update hmeets (.locking [] lockFiles rfl hfiles (fun f hf ↦ absurd hf List.not_mem_nil) rfl)
        fun f hf ↦ absurd hf List.not_mem_nil
  | lock i =>
      obtain ⟨p, lockFile, inside, hp, hphase, hstep, ⟨hfree, rfl⟩ | ⟨_, rfl⟩⟩ := hnext
      · refine h.update (h.plain i p hp) ?_ fun f hf j q hq hfq ↦ ?_
        · cases h.progress i p hp with
          | locking taken left _ hfiles hheld hrest =>
              cases left with
              | nil =>
                  rw [hrest] at hstep
                  cases hstep
              | cons file left =>
                  rw [hrest, runWithApplyLocks_cons, lockStep_wrap] at hstep
                  obtain ⟨rfl, rfl⟩ := Prod.mk.inj (Option.some.inj hstep)
                  refine .locking (taken ++ [file]) left hphase ?_ (fun f hf ↦ ?_) rfl
                  · rw [List.append_assoc]
                    exact hfiles
                  · rcases List.mem_append.mp hf with hf | hf
                    · exact List.mem_cons_of_mem _ (hheld f hf)
                    · rw [List.mem_singleton.mp hf]
                      exact List.mem_cons_self
          | running files hphase' _ _ =>
              rw [hphase] at hphase'
              cases hphase'
          | ended hphase' =>
              rw [hphase] at hphase'
              cases hphase'
        · rcases List.mem_cons.mp hf with rfl | hf
          · exact absurd hfq (hfree j q hq)
          · exact hown hp f hf j q hq hfq
      · exact h.update (h.plain i p hp) (.ended rfl) fun f hf ↦ hown hp f hf
  | start i =>
      obtain ⟨p, hp, hphase, hstep, rfl⟩ := hnext
      refine h.update (h.plain i p hp) ?_ fun f hf ↦ hown hp f hf
      cases h.progress i p hp with
      | locking taken left _ hfiles hheld hrest =>
          cases left with
          | nil =>
              rw [List.append_nil] at hfiles
              exact .running taken rfl hfiles hheld
          | cons file left =>
              rw [hrest, runWithApplyLocks_cons, lockStep_wrap] at hstep
              cases hstep
      | running files hphase' _ _ =>
          rw [hphase] at hphase'
          cases hphase'
      | ended hphase' =>
          rw [hphase] at hphase'
          cases hphase'
  | finish i =>
      obtain ⟨p, hp, rfl⟩ := hnext
      exact h.update (h.plain i p hp) (.ended rfl) fun f hf ↦ hown hp f hf
  | release i lockFile =>
      obtain ⟨p, hp, hphase, rfl⟩ := hnext
      exact h.update (h.plain i p hp) (.ended hphase) fun f hf ↦
        hown hp f (List.mem_filter.mp hf).1
  | vanish i =>
      obtain ⟨p, hp, _, _, rfl⟩ := hnext
      have hother : ∀ j q, Function.update s i none j = some q → s j = some q := by
        intro j q hq
        by_cases hj : j = i
        · subst hj
          rw [Function.update_self] at hq
          cases hq
        · rwa [Function.update_of_ne hj] at hq
      exact ⟨fun j q hq ↦ h.plain j q (hother j q hq), fun j q hq ↦ h.progress j q (hother j q hq),
        fun j k q r f hq hr ↦ h.exclusive j k q r f (hother j q hq) (hother k r hr)⟩

theorem inv_reaches (h : (applies env darwin).Reaches LaunchesPlain s) : Inv env darwin s :=
  h.invariant (fun _ hs ↦ inv_start hs) fun _ _ _ hs hmeets hnext ↦ inv_next hs hmeets hnext

omit [DecidableEq ι] in
theorem Inv.complete (h : Inv env darwin s) : Complete env s := by
  intro i p hp hphase lockFiles hfiles f hf
  cases h.progress i p hp with
  | locking taken left hphase' _ _ _ =>
      rw [hphase] at hphase'
      cases hphase'
  | running files _ hfiles' hheld =>
      rw [hfiles] at hfiles'
      obtain rfl := Option.some.inj hfiles'
      exact hheld f hf
  | ended hphase' =>
      rw [hphase] at hphase'
      cases hphase'

omit [DecidableEq ι] in
theorem Inv.lockFiles (h : Inv env darwin s) {i : ι} {p : Process} (hp : s i = some p)
    (hphase : p.phase = .running) : ∃ lockFiles,
      applyLockFiles env p.apply.inventory p.apply.workspaceRoot = some lockFiles := by
  cases h.progress i p hp with
  | locking taken left hphase' _ _ _ =>
      rw [hphase] at hphase'
      cases hphase'
  | running files _ hfiles _ => exact ⟨files, hfiles⟩
  | ended hphase' =>
      rw [hphase] at hphase'
      cases hphase'

omit [DecidableEq ι] in
theorem Inv.one_runs (h : Inv env darwin s) (patterns : Patterns) : Exclusive patterns s := by
  rintro i j p q a hp hq hrunp hrunq ⟨all, hall, ha⟩ ⟨all', hall', ha'⟩
  obtain ⟨files, hfiles⟩ := h.lockFiles hp hrunp
  obtain ⟨files', hfiles'⟩ := h.lockFiles hq hrunq
  have hmem := lock_mem env (h.plain i p hp) hall ha hfiles
  have hmem' := lock_mem env (h.plain j q hq) hall' ha' hfiles'
  exact h.exclusive i j p q _ hp hq (h.complete i p hp hrunp files hfiles _ hmem)
    (h.complete j q hq hrunq files' hfiles' _ hmem')

end Applies

/-- Two applies with a host in common share a lock file; and of all that run at a time, each
holds all its locks and no two touch one host. -/
theorem applies_exclusive (env : Env) (darwin : Bool) (patterns : Patterns) :
    (∀ one other : Apply, PlainInventory one.inventory → PlainInventory other.inventory →
      ∀ a, Touches patterns one a → Touches patterns other a → ∀ files files',
        applyLockFiles env one.inventory one.workspaceRoot = some files →
        applyLockFiles env other.inventory other.workspaceRoot = some files' →
          ∃ f, f ∈ files ∧ f ∈ files') ∧
      ∀ s : State ℕ, (applies env darwin).Reaches LaunchesPlain s →
        Exclusive patterns s ∧ Complete env s := by
  refine ⟨?_, fun s hs ↦ ⟨(inv_reaches hs).one_runs patterns, (inv_reaches hs).complete⟩⟩
  rintro one other hone hother a ⟨all, hall, ha⟩ ⟨all', hall', ha'⟩ files files' hfiles hfiles'
  exact ⟨_, lock_mem env hone hall ha hfiles, lock_mem env hother hall' ha' hfiles'⟩

/-! ## Two inventories of one host -/

theorem solid_of_all {cs : List Char} (h : cs.all (!isSpace ·) = true) :
    ∀ c ∈ cs, isSpace c = false := by
  simpa using h

theorem spells_of_all {value : List Char} (hne : value ≠ [])
    (h : value.all (fun c ↦ !isSpace c && !Py.Shlex.isQuote c) = true) : Spells value value :=
  ⟨hne, fun c hc ↦ by simpa using List.all_eq_true.mp h c hc, .inl rfl⟩

def boxItem : Item where
  blanks := [' ']
  text := "ansible_host=100.64.0.1".toList
  token := "ansible_host=100.64.0.1".toList
  quoted := false

theorem boxItem_plain : boxItem.Plain where
  apart := by decide
  blank := List.all_eq_true.mp (by decide)
  reads := by decide +kernel
  calm := calm_of_notMem (by decide)
  ends := by
    rintro c ⟨⟩
    rfl
  address _ := ⟨"100.64.0.1".toList, "100.64.0.1".toList, by decide, by decide,
    spells_of_all (by decide) (by decide), by decide⟩
  other h := absurd h (by decide)

/-- A host by its name, with its address. -/
def boxLine : Spelling where
  lead := []
  text := "box".toList
  name := "box".toList
  quoted := false
  items := [boxItem]
  tail := []

theorem boxLine_plain : boxLine.Plain where
  lead_blank := List.forall_mem_nil _
  spells := spells_of_all (by decide) (by decide)
  reads := by decide +kernel
  no_equals := by decide
  items_plain := List.forall_mem_singleton.mpr boxItem_plain
  one_address := by decide
  own_name h := absurd h (by decide)
  tail := .inl (List.forall_mem_nil _)

def boxInventory : List Char := "[devbox]\nbox ansible_host=100.64.0.1\n".toList

theorem boxInventory_plain : PlainInventory boxInventory := by
  have hlines : boxInventory.splitOn '\n' =
      ["[devbox]".toList, "box ansible_host=100.64.0.1".toList, []] := by decide +kernel
  have hheader : classify "[devbox]".toList = .header .hosts := by rfl
  have hentry : classify "box ansible_host=100.64.0.1".toList = .entry := by rfl
  have hnothing : classify [] = .nothing := by rfl
  have hend : PlainLines .hosts [[]] := by
    rw [PlainLines, hnothing]
    trivial
  have hhost : PlainLines .hosts ["box ansible_host=100.64.0.1".toList, []] := by
    rw [PlainLines, hentry]
    exact ⟨by decide +kernel, fun _ ↦ ⟨boxLine, boxLine_plain, by decide⟩, hend⟩
  rw [PlainInventory, hlines, PlainLines, hheader]
  exact ⟨⟨[], "devbox".toList, [], by decide, List.forall_mem_nil _, solid_of_all (by decide),
    by decide, .inl (List.forall_mem_nil _)⟩, hhost⟩

def addressLine : Spelling where
  lead := []
  text := "100.64.0.1".toList
  name := "100.64.0.1".toList
  quoted := false
  items := []
  tail := " # the box".toList

theorem addressLine_plain : addressLine.Plain where
  lead_blank := List.forall_mem_nil _
  spells := spells_of_all (by decide) (by decide)
  reads := by decide +kernel
  no_equals := by decide
  items_plain := List.forall_mem_nil _
  one_address := by decide
  own_name _ := ⟨by decide, by decide, by decide⟩
  tail := .inr ⟨[' '], " the box".toList, by decide, by decide, List.all_eq_true.mp (by decide),
    by simpa using (by decide : (" the box".toList.all (!isTerminator ·)) = true)⟩

def addressInventory : List Char := "100.64.0.1 # the box".toList

theorem addressInventory_plain : PlainInventory addressInventory := by
  have hlines : addressInventory.splitOn '\n' = ["100.64.0.1 # the box".toList] := by
    decide +kernel
  have hentry : classify "100.64.0.1 # the box".toList = .entry := by rfl
  rw [PlainInventory, hlines, PlainLines, hentry]
  exact ⟨by decide +kernel, fun _ ↦ ⟨addressLine, addressLine_plain, by decide⟩, trivial⟩

/-- One name for every name, none for a range. -/
def oneName : Patterns := ⟨fun name ↦ [name], fun _ _ ↦ rfl⟩

def lockEnv : Env := ⟨"/locks", id⟩

def boxApply : Apply := ⟨boxInventory, "/a".toList, []⟩

def addressApply : Apply := ⟨addressInventory, "/b".toList, []⟩

/-- The apply of `boxApply` alone, with the locks that it has and those it still takes. -/
def alone (held left : List String) (phase : Phase) : State ℕ :=
  Function.update (fun _ ↦ none) 0
    (some ⟨boxApply, held, runWithApplyLocks false left (applyCommand []), phase⟩)

theorem alone_free {held left : List String} {phase : Phase} {lockFile : String}
    (h : lockFile ∉ held) : Free (alone held left phase) lockFile := by
  intro i p hp
  by_cases hi : i = 0
  · rw [alone, hi, Function.update_self] at hp
    rwa [← Option.some.inj hp]
  · rw [alone, Function.update_of_ne hi] at hp
    cases hp

theorem alone_lock {held left : List String} {lockFile : String} (h : lockFile ∉ held) :
    Next lockEnv false (alone held (lockFile :: left) .locking) (.lock 0)
      (alone (lockFile :: held) left .locking) := by
  refine ⟨_, lockFile, runWithApplyLocks false left (applyCommand []), Function.update_self .., rfl,
    ?_, .inl ⟨alone_free h, ?_⟩⟩
  · rw [runWithApplyLocks_cons, lockStep_wrap]
  · rw [alone, alone, Function.update_idem]

def boxLocks : List String := ["/locks/host:100.64.0.1.lock", "/locks/workspace:/a.lock"]

def addressLocks : List String := ["/locks/host:100.64.0.1.lock", "/locks/workspace:/b.lock"]

theorem boxApply_runs :
    (applies lockEnv false).Reaches LaunchesPlain (alone boxLocks.reverse [] .running) := by
  have hfiles : applyLockFiles lockEnv boxApply.inventory boxApply.workspaceRoot =
      some boxLocks := by decide +kernel
  have hlaunched : (applies lockEnv false).Reaches LaunchesPlain (alone [] boxLocks .locking) :=
    (System.Reaches.of_start (s := fun _ ↦ none) fun _ ↦ rfl).snoc
      (e := Event.launch 0 boxApply) boxInventory_plain ⟨rfl, _, hfiles, rfl⟩
  have hhost := hlaunched.snoc (e := Event.lock 0) trivial (alone_lock List.not_mem_nil)
  have hboth := hhost.snoc (e := Event.lock 0) trivial (alone_lock (by decide))
  refine hboth.snoc (e := Event.start 0) trivial ⟨_, Function.update_self .., rfl, rfl, ?_⟩
  rw [alone, alone, Function.update_idem]
  rfl

/-- A host that has a name in one inventory only is locked by the applies of both, and the
apply that runs has its locks. -/
theorem box_locked_by_both :
    (∃ f, f ∈ boxLocks ∧ f ∈ addressLocks) ∧
      Exclusive oneName (alone boxLocks.reverse [] .running) ∧
      Complete lockEnv (alone boxLocks.reverse [] .running) := by
  obtain ⟨hshare, hruns⟩ := applies_exclusive lockEnv false oneName
  exact ⟨hshare boxApply addressApply boxInventory_plain addressInventory_plain "100.64.0.1".toList
    ⟨_, by decide +kernel, List.mem_singleton_self _⟩
    ⟨_, by decide +kernel, List.mem_singleton_self _⟩ _ _ (by decide +kernel) (by decide +kernel),
    hruns _ boxApply_runs⟩

/-! ## A port behind the name -/

/-- With a port behind its name the host takes another lock. -/
theorem port_not_shared :
    addresses ⟨fun name ↦ [name], fun _ _ ↦ rfl⟩ "box:22\n".toList = some ["box".toList] ∧
      addresses ⟨fun name ↦ [name], fun _ _ ↦ rfl⟩ "box\n".toList = some ["box".toList] ∧
      ∃ files files', applyLockFiles ⟨"/locks", id⟩ "box:22\n".toList "/a".toList = some files ∧
        applyLockFiles ⟨"/locks", id⟩ "box\n".toList "/b".toList = some files' ∧
          ∀ f ∈ files, f ∉ files' := by
  refine ⟨by decide +kernel, by decide +kernel,
    ["/locks/host:box:22.lock", "/locks/workspace:/a.lock"],
    ["/locks/host:box.lock", "/locks/workspace:/b.lock"], by decide +kernel, by decide +kernel, ?_⟩
  decide

end RemoteDevbox.Client.ApplyLocks
