import RemoteDevbox.Box.BrowserReap
import RemoteDevbox.Spec.Types
import Mathlib.Data.List.ReduceOption

namespace RemoteDevbox.Box.WorktreeReap

open Py Reap

/-!
# The worktree reaper

It ends what sessions left behind in worktrees that were removed. Agent sessions
and the scripts of the unit are to be spared; they are told by their command line,
in which arguments and blanks inside arguments look the same.
-/

/-! ## The script -/

def WORKTREE_ROOTS : List String := ["/.claude/worktrees/", "/.worktrees/"]

def PROTECTED_EXE : List String := ["claude", "codex", "tmux"]

def SCAFFOLDING_PREFIX : String := "agent-rc-"

structure Proc where
  pid : ℤ
  cwd : List Char
  cmdline : List Char
  startTicks : ℤ
  rssPages : ℤ

def deletedSuffix : List Char := " (deleted)".toList

def isOrphanCwd (cwd : List Char) : Bool :=
  deletedSuffix.isSuffixOf cwd &&
    WORKTREE_ROOTS.any fun root ↦
      decide (root.toList <:+: cwd.take (cwd.length - deletedSuffix.length) ++ ['/'])

def isScaffolding (path : List Char) : Bool := startsWith (Path.basename path) SCAFFOLDING_PREFIX

def isProtected (cmdline : List Char) : Bool :=
  match words cmdline with
  | [] => true
  | exe :: rest =>
      (PROTECTED_EXE.map String.toList).contains (Path.basename exe) || isScaffolding exe ||
        match rest with
        | [] => false
        | script :: _ => isScaffolding script

def selectOrphans (procs : List Proc) : List Proc :=
  procs.filter fun p ↦ isOrphanCwd p.cwd && !isProtected p.cmdline

/-- The fields of one process, which is skipped where a file cannot be read. -/
def readProc (procfs : Procfs) (pid : ℤ) : Except Fault (Option Proc) :=
  withFile procfs pid "cwd" fun cwd ↦
    withFile procfs pid "cmdline" fun raw ↦
      withFile procfs pid "stat" fun stat ↦
        withFile procfs pid "statm" fun statm ↦
          match numberAt (words statm) 1, numberAt (words (afterLast ')' stat)) 19 with
          | some rssPages, some startTicks => .ok (some ⟨pid, cwd, shown raw, startTicks, rssPages⟩)
          | _, _ => .error .malformed

def readProcs (procfs : Procfs) : Except Fault (List Proc) := do
  let procs ← procfs.pids.mapM (readProc procfs)
  return procs.reduceOption

/-! ## What is to be spared -/

/-- The arguments of a process, each ended by a NUL. -/
def argumentsOf (raw : List Char) : List (List Char) := raw.splitOn nul

/-- The arguments run a program of this name, by itself or through an interpreter that is
given options first: such as take no value and name nothing to run themselves. -/
inductive Runs (interpreters : List String) (flag program : List Char → Prop) :
    List (List Char) → Prop
  | direct {exe : List Char} {rest : List (List Char)} (h : program (Path.basename exe)) :
      Runs interpreters flag program (exe :: rest)
  | script {exe script : List Char} {options rest : List (List Char)}
      (hexe : Path.basename exe ∈ interpreters.map String.toList)
      (hoptions : ∀ o ∈ options, startsWith o "-" = true ∧ flag o)
      (h : program (Path.basename script)) :
      Runs interpreters flag program (exe :: options ++ script :: rest)

/-- The program of an agent provider, the server of the terminals or a script of the unit. -/
def Essential (name : List Char) : Prop :=
  name ∈ Spec.PROVIDERS.map String.toList ∨ name = "tmux".toList ∨
    startsWith name SCAFFOLDING_PREFIX = true

/-- The blank-separated words of the arguments start with a name that is known, or the
second of them is a script of the unit. -/
def Recognised (arguments : List (List Char)) : Prop :=
  ∃ exe rest, arguments.flatMap words = exe :: rest ∧
    (Path.basename exe ∈ PROTECTED_EXE.map String.toList ∨ isScaffolding exe = true ∨
      ∃ script ∈ rest.head?, isScaffolding script = true)

/-! ## From arguments to words -/

section Words

variable {raw path : List Char}

theorem map_nul (raw : List Char) : raw.map (fun c ↦ if c = Char.ofNat 0 then ' ' else c) =
    [' '].intercalate (argumentsOf raw) := by
  induction raw with
  | nil => rfl
  | cons c raw ih =>
      obtain ⟨first, others, hsplit⟩ := List.exists_cons_of_ne_nil (List.splitOn_ne_nil nul raw)
      rw [argumentsOf, hsplit] at ih
      rw [List.map_cons, ih, argumentsOf, List.splitOn_cons_eq_if_modifyHead, hsplit]
      by_cases hc : c = nul
      · rw [if_pos (show c = Char.ofNat 0 from hc), if_pos (beq_iff_eq.mpr hc),
          List.intercalate_cons_cons]
        rfl
      · rw [if_neg (show ¬c = Char.ofNat 0 from hc), if_neg (by simpa using hc)]
        cases others with
        | nil => simp
        | cons second others =>
            rw [List.modifyHead_cons, List.intercalate_cons_cons, List.intercalate_cons_cons]
            rfl

/-- The blanks between arguments are no different from those inside them. -/
theorem words_shown : words (shown raw) = (argumentsOf raw).flatMap words := by
  rw [shown, words_stripped, map_nul, words_intercalate (by decide)]

theorem words_ne_nil {text : List Char} {c : Char} (hc : c ∈ text) (hblank : isBlank c = false) :
    words text ≠ [] := by
  induction text with
  | nil => cases hc
  | cons d text ih =>
      by_cases hd : isBlank d = true
      · rw [words_cons hd]
        refine ih ((List.mem_cons.mp hc).resolve_left ?_)
        rintro rfl
        rw [hd] at hblank
        cases hblank
      · obtain ⟨first, others, hsplit⟩ :=
          List.exists_cons_of_ne_nil (List.splitOnP_ne_nil isBlank text)
        rw [words, List.splitOnP_cons_eq_if_modifyHead, if_neg hd, hsplit, List.modifyHead_cons,
          List.filter_cons_of_pos (by rfl)]
        exact List.cons_ne_nil _ _

theorem mem_of_mem_basename {c : Char} (h : c ∈ Path.basename path) : c ∈ path := by
  rw [Path.basename, List.mem_reverse] at h
  exact List.mem_reverse.mp (List.takeWhile_subset _ h)

/-- The name of a program that is to be spared is not blank. -/
theorem essential_words (h : Essential (Path.basename path)) : words path ≠ [] := by
  obtain ⟨c, hc, hblank⟩ : ∃ c ∈ Path.basename path, isBlank c = false := by
    rcases h with h | h | h
    · simp only [Spec.PROVIDERS, List.map_cons, List.map_nil, List.mem_cons, List.not_mem_nil,
        or_false] at h
      rcases h with h | h | h
      · exact ⟨'c', by rw [h]; decide, by decide⟩
      · exact ⟨'c', by rw [h]; decide, by decide⟩
      · exact ⟨'o', by rw [h]; decide, by decide⟩
    · exact ⟨'t', by rw [h]; decide, by decide⟩
    · obtain ⟨rest, hrest⟩ := List.isPrefixOf_iff_prefix.mp h
      exact ⟨'a', by rw [← hrest]; exact List.mem_append_left _ (by decide), by decide⟩
  exact words_ne_nil (mem_of_mem_basename hc) hblank

theorem runs_words {interpreters : List String} {flag : List Char → Prop}
    {arguments : List (List Char)} (h : Runs interpreters flag Essential arguments) :
    arguments.flatMap words ≠ [] := by
  have hone : ∀ a ∈ arguments, words a ≠ [] → arguments.flatMap words ≠ [] := by
    intro a ha hne hnil
    exact hne (List.flatMap_eq_nil_iff.mp hnil a ha)
  cases h with
  | direct h => exact hone _ List.mem_cons_self (essential_words h)
  | script _ _ h =>
      exact hone _ (List.mem_append_right _ List.mem_cons_self) (essential_words h)

end Words

/-! ## Sessions and the reaper -/

theorem isProtected_shown {raw : List Char} (h : (argumentsOf raw).flatMap words ≠ []) :
    isProtected (shown raw) = true ↔ Recognised (argumentsOf raw) := by
  obtain ⟨exe, rest, hwords⟩ := List.exists_cons_of_ne_nil h
  unfold isProtected Recognised
  rw [words_shown, hwords]
  constructor
  · intro hprotected
    refine ⟨exe, rest, rfl, ?_⟩
    rcases (Bool.or_eq_true _ _).mp hprotected with hfirst | hsecond
    · rcases (Bool.or_eq_true _ _).mp hfirst with hname | hscript
      · exact .inl (by simpa using hname)
      · exact .inr (.inl hscript)
    · cases rest with
      | nil => cases hsecond
      | cons script rest => exact .inr (.inr ⟨script, rfl, hsecond⟩)
  · rintro ⟨exe', rest', hsame, hcases⟩
    obtain ⟨rfl, rfl⟩ := List.cons.inj hsame
    rcases hcases with hname | hscript | ⟨script, hhead, hscript⟩
    · have hcontains : (PROTECTED_EXE.map String.toList).contains (Path.basename exe) = true := by
        simpa using hname
      simp only [hcontains, Bool.true_or]
    · simp only [hscript, Bool.or_true, Bool.true_or]
    · cases rest with
      | nil => cases hhead
      | cons second rest =>
          obtain rfl := Option.some.inj hhead
          simp only [hscript, Bool.or_true]

/-- What a scan keeps is read from the files of the process. -/
theorem cmdline_of_readProcs {procfs : Procfs} {procs : List Proc} (h : readProcs procfs = .ok procs)
    {p : Proc} (hp : p ∈ procs) :
    ∃ raw, procfs.file p.pid "cmdline" = .found raw ∧ p.cmdline = shown raw := by
  obtain ⟨found, hfound, hprocs⟩ := except_bind_eq_ok.mp h
  obtain rfl := Except.ok.inj hprocs
  obtain ⟨pid, _, hpid⟩ := forall₂_exists_left (except_mapM_eq_ok.mp hfound)
    (List.reduceOption_mem_iff.mp hp)
  obtain ⟨cwd, _, hpid⟩ := withFile_eq_some.mp hpid
  obtain ⟨raw, hraw, hpid⟩ := withFile_eq_some.mp hpid
  obtain ⟨stat, _, hpid⟩ := withFile_eq_some.mp hpid
  obtain ⟨statm, _, hpid⟩ := withFile_eq_some.mp hpid
  split at hpid
  · obtain rfl := Option.some.inj (Except.ok.inj hpid)
    exact ⟨raw, hraw, rfl⟩
  · cases hpid

/-- Of every table of processes, every set of interpreters and every set of options. -/
theorem sessions_spared_iff {interpreters : List String} {flag : List Char → Prop}
    {procfs : Procfs} {procs : List Proc} (h : readProcs procfs = .ok procs) :
    (∀ p ∈ selectOrphans procs, ∀ raw, procfs.file p.pid "cmdline" = .found raw →
        ¬Runs interpreters flag Essential (argumentsOf raw)) ↔
      ∀ p ∈ procs, isOrphanCwd p.cwd = true → ∀ raw, procfs.file p.pid "cmdline" = .found raw →
        Runs interpreters flag Essential (argumentsOf raw) → Recognised (argumentsOf raw) := by
  have hread : ∀ p ∈ procs, ∀ raw, procfs.file p.pid "cmdline" = .found raw →
      p.cmdline = shown raw := by
    intro p hp raw hraw
    obtain ⟨raw', hraw', hcmdline⟩ := cmdline_of_readProcs h hp
    rw [hraw] at hraw'
    rw [hcmdline, Reading.found.inj hraw']
  constructor
  · intro hspared p hp hcwd raw hraw hruns
    by_contra hunknown
    refine hspared p ?_ raw hraw hruns
    have hprotected : isProtected p.cmdline = false := by
      rw [hread p hp raw hraw, ← Bool.not_eq_true, isProtected_shown (runs_words hruns)]
      exact hunknown
    exact List.mem_filter.mpr ⟨hp, by rw [hcwd, hprotected]; rfl⟩
  · intro hknown p hp raw hraw hruns
    obtain ⟨hp, hselected⟩ := List.mem_filter.mp hp
    obtain ⟨hcwd, hprotected⟩ := (Bool.and_eq_true _ _).mp hselected
    have hrecognised := (isProtected_shown (runs_words hruns)).mpr (hknown p hp hcwd raw hraw hruns)
    rw [hread p hp raw hraw, hrecognised] at hprotected
    cases hprotected

/-- Processes with these arguments, in a worktree that was removed. -/
def stranded (commands : List (ℤ × List String)) : Procfs where
  pids := commands.map Prod.fst
  file := fun pid name ↦
    match name with
    | "cwd" => .found "/home/ada/app/.claude/worktrees/fix (deleted)".toList
    | "cmdline" => .found (((commands.lookup pid).getD []).flatMap fun a ↦ a.toList ++ [nul])
    | "stat" => .found "10 (omp) S 1 2 3 4 5 6 7 8 9 10 11 12 13 14 15 16 17 18 19 20".toList
    | "statm" => .found "100 50".toList
    | _ => .absent
  fds := fun _ ↦ .absent
  tables := []

/-- Such options of `node` and `bun`. -/
def lone (option : List Char) : Prop :=
  option ∈ ["--inspect", "--smol", "--enable-source-maps"].map String.toList

/-- A session of Claude is spared. -/
theorem claude_spared : ∃ procs, readProcs (stranded [(10, ["claude", "--resume"])]) = .ok procs ∧
    procs.map Proc.pid = [10] ∧
    ∀ p ∈ selectOrphans procs, ∀ raw,
      (stranded [(10, ["claude", "--resume"])]).file p.pid "cmdline" = .found raw →
        ¬Runs ["node", "bun"] lone Essential (argumentsOf raw) := by
  refine ⟨_, rfl, rfl, (sessions_spared_iff rfl).mpr fun p hp _ raw hraw _ ↦ ?_⟩
  rw [List.mem_singleton.mp hp] at hraw
  obtain rfl := Reading.found.inj hraw
  exact ⟨"claude".toList, ["--resume".toList], by decide, .inl (by decide)⟩

/-- A session of omp is selected, and one of Claude that was started through node. -/
theorem sessions_selected : ∃ procs omp claude,
    readProcs (stranded [(10, ["omp"]), (11, ["node", "/usr/bin/claude"])]) = .ok procs ∧
      selectOrphans procs = [omp, claude] ∧
      (∃ raw, (stranded [(10, ["omp"]), (11, ["node", "/usr/bin/claude"])]).file omp.pid "cmdline" =
        .found raw ∧ Runs ["node", "bun"] lone Essential (argumentsOf raw)) ∧
      ∃ raw, (stranded [(10, ["omp"]), (11, ["node", "/usr/bin/claude"])]).file claude.pid
        "cmdline" = .found raw ∧ Runs ["node", "bun"] lone Essential (argumentsOf raw) := by
  refine ⟨_, _, _, rfl, rfl, ⟨_, rfl, .direct (.inl (by decide))⟩, ⟨_, rfl, ?_⟩⟩
  exact @Runs.script _ _ _ "node".toList "/usr/bin/claude".toList [] [[]] (by decide) nofun
    (.inl (by decide))

end RemoteDevbox.Box.WorktreeReap
